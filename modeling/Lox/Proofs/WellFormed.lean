import Mathlib
import Lox.Proofs.Acceptance
import Lox.Proofs.Raising

set_option autoImplicit false

namespace Lox

open Grammar Syntax

/-- The node's operator or name is of a kind that belongs there. -/
def Expr.WellFormed : Expr → Prop
  | .unary op _ => op.kind ∈ [.bang, .minus]
  | .binary op _ _ => op.kind ∈ [.plus, .minus, .star, .slash, .greater, .greaterEqual, .less, .lessEqual,
      .equalEqual, .bangEqual]
  | .logical op _ _ => op.kind ∈ [.kwAnd, .kwOr]
  | .var name => name.kind = .identifier
  | .assign name _ => name.kind = .identifier
  | .literal _ | .grouping _ => True

def Stmt.isDeclaration : Stmt → Bool
  | .declare _ _ => true
  | _ => false

def Stmt.WellFormed : Stmt → Prop
  | .declare name _ => name.kind = .identifier
  | .ifThen _ body => body.isDeclaration = false
  | .ifElse _ body otherwise => body.isDeclaration = false ∧ otherwise.isDeclaration = false
  | .loop _ body => body.isDeclaration = false
  | .print _ | .expression _ | .block _ => True

/-- What the node keeps of the source has the property: its operator or name does, and so does a token that
its literal is the value of, unless the literal is a constant. -/
def Expr.From (T : Token → Prop) : Expr → Prop
  | .literal value => value = .nil ∨ (∃ b, value = .boolean b) ∨
      ∃ t, T t ∧ t.kind ∈ [.number, .string] ∧ value = t.literal.getD .nil
  | .var name | .assign name _ => T name
  | .unary op _ | .binary op _ _ | .logical op _ _ => T op
  | .grouping _ => True

def Stmt.From (T : Token → Prop) : Stmt → Prop
  | .declare name _ => T name
  | _ => True

def Expr.WellFormedFrom (T : Token → Prop) (e : Expr) : Prop := e.WellFormed ∧ e.From T

def Stmt.WellFormedFrom (T : Token → Prop) (s : Stmt) : Prop := s.WellFormed ∧ s.From T

theorem Expr.All.combine {P Q R : Expr → Prop} (h : ∀ node, P node → Q node → R node) {e : Expr}
    (hp : e.All P) (hq : e.All Q) : e.All R := by
  induction e with
  | literal | var => exact h _ hp hq
  | assign _ _ ih | unary _ _ ih | grouping _ ih => exact ⟨h _ hp.1 hq.1, ih hp.2 hq.2⟩
  | binary _ _ _ ihl ihr | logical _ _ _ ihl ihr =>
    exact ⟨h _ hp.1 hq.1, ihl hp.2.1 hq.2.1, ihr hp.2.2 hq.2.2⟩

section Combine

variable {P P' P'' : Stmt → Prop} {Q Q' Q'' : Expr → Prop}

mutual

theorem Stmt.All.combine (hs : ∀ node, P node → P' node → P'' node)
    (he : ∀ node, Q node → Q' node → Q'' node) :
    ∀ {s : Stmt}, s.All P Q → s.All P' Q' → s.All P'' Q''
  | .print _, h, h' | .expression _, h, h' | .declare _ (some _), h, h' =>
    ⟨hs _ h.1 h'.1, Expr.All.combine he h.2 h'.2⟩
  | .declare _ none, h, h' => hs _ h h'
  | .block _, h, h' => ⟨hs _ h.1 h'.1, Stmt.AllIn.combine hs he h.2 h'.2⟩
  | .ifThen _ _, h, h' | .loop _ _, h, h' =>
    ⟨hs _ h.1 h'.1, Expr.All.combine he h.2.1 h'.2.1, Stmt.All.combine hs he h.2.2 h'.2.2⟩
  | .ifElse _ _ _, h, h' =>
    ⟨hs _ h.1 h'.1, Expr.All.combine he h.2.1 h'.2.1, Stmt.All.combine hs he h.2.2.1 h'.2.2.1,
      Stmt.All.combine hs he h.2.2.2 h'.2.2.2⟩

theorem Stmt.AllIn.combine (hs : ∀ node, P node → P' node → P'' node)
    (he : ∀ node, Q node → Q' node → Q'' node) :
    ∀ {body : List Stmt}, Stmt.AllIn P Q body → Stmt.AllIn P' Q' body → Stmt.AllIn P'' Q'' body
  | [], _, _ => trivial
  | _ :: _, h, h' => ⟨Stmt.All.combine hs he h.1 h'.1, Stmt.AllIn.combine hs he h.2 h'.2⟩

end

end Combine

namespace Syntax

variable {T : Token → Prop}

theorem Spells.wellFormed {p : Phrase} {ts : List Token} {e : Expr} (h : Spells p ts e)
    (hT : ∀ t ∈ ts, T t) : e.All (Expr.WellFormedFrom T) := by
  induction h with
  | assign hn _ _ ih =>
    simp only [List.forall_mem_cons] at hT
    obtain ⟨hname, _, hvalue⟩ := hT
    exact ⟨⟨hn, hname⟩, ih hvalue⟩
  | logicOr _ ho _ ihl ihr | logicAnd _ ho _ ihl ihr =>
    simp only [List.forall_mem_append, List.forall_mem_cons] at hT
    obtain ⟨hl, hop, hr⟩ := hT
    exact ⟨⟨by simp [Expr.WellFormed, ho], hop⟩, ihl hl, ihr hr⟩
  | equality _ ho _ ihl ihr | comparison _ ho _ ihl ihr | term _ ho _ ihl ihr | factor _ ho _ ihl ihr =>
    simp only [List.forall_mem_append, List.forall_mem_cons] at hT
    obtain ⟨hl, hop, hr⟩ := hT
    refine ⟨⟨?_, hop⟩, ihl hl, ihr hr⟩
    rw [Expr.WellFormed]
    exact List.subset_def.mp (by decide) ho
  | unary ho _ ih =>
    obtain ⟨hop, hoperand⟩ := List.forall_mem_cons.mp hT
    exact ⟨⟨ho, hop⟩, ih hoperand⟩
  | literal hk => exact ⟨trivial, .inr (.inr ⟨_, hT _ List.mem_cons_self, hk, rfl⟩)⟩
  | truth | falsity => exact ⟨trivial, .inr (.inl ⟨_, rfl⟩)⟩
  | nothing => exact ⟨trivial, .inl rfl⟩
  | «variable» hk => exact ⟨hk, hT _ List.mem_cons_self⟩
  | grouping _ _ _ ih =>
    simp only [List.forall_mem_append, List.forall_mem_cons] at hT
    exact ⟨⟨trivial, trivial⟩, ih hT.1.2⟩
  | ofLogicOr _ ih | ofLogicAnd _ ih | ofEquality _ ih | ofComparison _ ih | ofTerm _ ih
  | ofFactor _ ih | ofUnary _ ih | ofPrimary _ ih => exact ih hT

theorem Variable.wellFormed {ts : List Token} {s : Stmt} (h : Variable ts s) (hT : ∀ t ∈ ts, T t) :
    s.All (Stmt.WellFormedFrom T) (Expr.WellFormedFrom T) := by
  cases h with
  | bare _ hn _ =>
    simp only [List.forall_mem_cons] at hT
    exact ⟨hn, hT.2.1⟩
  | initialized _ hn _ he _ =>
    simp only [List.forall_mem_append, List.forall_mem_cons] at hT
    obtain ⟨⟨_, hname, _, hinitial⟩, _⟩ := hT
    exact ⟨⟨hn, hname⟩, he.wellFormed hinitial⟩

theorem Simple.wellFormed {ts : List Token} {s : Stmt} (h : Simple ts s) (hT : ∀ t ∈ ts, T t) :
    s.All (Stmt.WellFormedFrom T) (Expr.WellFormedFrom T) ∧ s.isDeclaration = false := by
  cases h with
  | expression he _ => exact ⟨⟨⟨trivial, trivial⟩, he.wellFormed (List.forall_mem_append.mp hT).1⟩, rfl⟩

theorem Condition.wellFormed {ts : List Token} {e : Expr} (h : Condition ts e) (hT : ∀ t ∈ ts, T t) :
    e.All (Expr.WellFormedFrom T) := by
  cases h with
  | parenthesized _ he _ =>
    simp only [List.forall_mem_append, List.forall_mem_cons] at hT
    exact he.wellFormed hT.1.2

theorem Initial.wellFormed {ts : List Token} {s : Stmt} (h : Initial ts (some s)) (hT : ∀ t ∈ ts, T t) :
    s.All (Stmt.WellFormedFrom T) (Expr.WellFormedFrom T) := by
  cases h with
  | «variable» hv => exact hv.wellFormed hT
  | simple hs => exact (hs.wellFormed hT).1

theorem Optional.wellFormed {ts : List Token} {e : Expr} (h : Optional ts (some e)) (hT : ∀ t ∈ ts, T t) :
    e.All (Expr.WellFormedFrom T) := by
  cases h with
  | present he => exact he.wellFormed hT

/-- The loop that a `for` stands for is well-formed if its parts are; its body may stand in a block of its
own, but is no declaration either way. -/
theorem Header.wellFormed {ts : List Token} {initial : Option Stmt} {c step : Option Expr} {body : Stmt}
    (h : Header ts initial c step) (hT : ∀ t ∈ ts, T t)
    (hb : body.All (Stmt.WellFormedFrom T) (Expr.WellFormedFrom T)) (hd : body.isDeclaration = false) :
    (expansion initial (c.getD (.literal (.boolean true))) step body).All (Stmt.WellFormedFrom T)
      (Expr.WellFormedFrom T) ∧
      (expansion initial (c.getD (.literal (.boolean true))) step body).isDeclaration = false := by
  obtain ⟨_, hi, hc, _, hs, _⟩ := h
  simp only [List.forall_mem_append, List.forall_mem_cons] at hT
  obtain ⟨⟨⟨⟨_, hinitial⟩, hcondition⟩, _, hstep⟩, _⟩ := hT
  have hcondition : (c.getD (.literal (.boolean true))).All (Expr.WellFormedFrom T) := by
    cases c with
    | none => exact ⟨trivial, .inr (.inl ⟨true, rfl⟩)⟩
    | some e => exact hc.wellFormed hcondition
  cases step with
  | none =>
    have hloop : (Stmt.loop (c.getD (.literal (.boolean true))) body).All (Stmt.WellFormedFrom T)
        (Expr.WellFormedFrom T) := ⟨⟨hd, trivial⟩, hcondition, hb⟩
    cases initial with
    | none => exact ⟨hloop, rfl⟩
    | some s => exact ⟨⟨⟨trivial, trivial⟩, hi.wellFormed hinitial, hloop, trivial⟩, rfl⟩
  | some e =>
    have hturn : (Stmt.block [body, .expression e]).All (Stmt.WellFormedFrom T) (Expr.WellFormedFrom T) :=
      ⟨⟨trivial, trivial⟩, hb, ⟨⟨trivial, trivial⟩, hs.wellFormed hstep⟩, trivial⟩
    have hloop : (Stmt.loop (c.getD (.literal (.boolean true))) (.block [body, .expression e])).All
        (Stmt.WellFormedFrom T) (Expr.WellFormedFrom T) := ⟨⟨rfl, trivial⟩, hcondition, hturn⟩
    cases initial with
    | none => exact ⟨hloop, rfl⟩
    | some s => exact ⟨⟨⟨trivial, trivial⟩, hi.wellFormed hinitial, hloop, trivial⟩, rfl⟩

mutual

theorem Statement.wellFormed {rule : ElseRule} {dangling : Bool} {ts : List Token} {s : Stmt} :
    Statement rule dangling ts s → (∀ t ∈ ts, T t) →
      s.All (Stmt.WellFormedFrom T) (Expr.WellFormedFrom T) ∧ s.isDeclaration = false
  | .ifThen _ hc hb, hT => by
    simp only [List.forall_mem_append, List.forall_mem_cons] at hT
    obtain ⟨⟨_, hcondition⟩, hthen⟩ := hT
    obtain ⟨hbody, hd⟩ := hb.wellFormed hthen
    exact ⟨⟨⟨hd, trivial⟩, hc.wellFormed hcondition, hbody⟩, rfl⟩
  | .ifElse _ hc hb _ _ ho, hT => by
    simp only [List.forall_mem_append, List.forall_mem_cons] at hT
    obtain ⟨⟨⟨_, hcondition⟩, hthen⟩, _, helse⟩ := hT
    obtain ⟨hbody, hd⟩ := hb.wellFormed hthen
    obtain ⟨hother, hd'⟩ := ho.wellFormed helse
    exact ⟨⟨⟨⟨hd, hd'⟩, trivial⟩, hc.wellFormed hcondition, hbody, hother⟩, rfl⟩
  | .loop _ hc hb, hT => by
    simp only [List.forall_mem_append, List.forall_mem_cons] at hT
    obtain ⟨⟨_, hcondition⟩, hrepeated⟩ := hT
    obtain ⟨hbody, hd⟩ := hb.wellFormed hrepeated
    exact ⟨⟨⟨hd, trivial⟩, hc.wellFormed hcondition, hbody⟩, rfl⟩
  | .counting _ hh hb, hT => by
    simp only [List.forall_mem_append, List.forall_mem_cons] at hT
    obtain ⟨⟨_, hheader⟩, hrepeated⟩ := hT
    obtain ⟨hbody, hd⟩ := hb.wellFormed hrepeated
    exact hh.wellFormed hheader hbody hd
  | .print _ he _, hT => by
    simp only [List.forall_mem_append, List.forall_mem_cons] at hT
    exact ⟨⟨⟨trivial, trivial⟩, he.wellFormed hT.1.2⟩, rfl⟩
  | .block _ hb _, hT => by
    simp only [List.forall_mem_append, List.forall_mem_cons] at hT
    exact ⟨⟨⟨trivial, trivial⟩, hb.wellFormed hT.1.2⟩, rfl⟩
  | .simple hs, hT => hs.wellFormed hT

theorem Declarations.wellFormed {rule : ElseRule} {ts : List Token} {body : List Stmt} :
    Declarations rule ts body → (∀ t ∈ ts, T t) →
      Stmt.AllIn (Stmt.WellFormedFrom T) (Expr.WellFormedFrom T) body
  | .nil, _ => trivial
  | .variable hv hb, hT =>
    have ⟨hfirst, hrest⟩ := List.forall_mem_append.mp hT
    ⟨hv.wellFormed hfirst, hb.wellFormed hrest⟩
  | .statement hs hb, hT =>
    have ⟨hfirst, hrest⟩ := List.forall_mem_append.mp hT
    ⟨(hs.wellFormed hfirst).1, hb.wellFormed hrest⟩

end

end Syntax

def RuntimeError.isInvalid : RuntimeError → Bool
  | .invalidUnary _ | .invalidBinary _ => true
  | _ => false

theorem applyUnary_valid {op : Token} (h : op.kind ∈ [.bang, .minus]) {v : Value} {err : RuntimeError}
    (he : applyUnary op v = .error err) : err.isInvalid = false := by
  simp only [List.mem_cons, List.not_mem_nil, or_false] at h
  rcases h with h | h
  · simp [applyUnary, h] at he
  · cases v <;> simp only [applyUnary, h] at he <;> cases he <;> rfl

theorem onNumbers_valid {op : Token} {f : Float → Float → Value} {l r : Value} {err : RuntimeError}
    (he : onNumbers op f l r = .error err) : err.isInvalid = false := by
  unfold onNumbers at he
  split at he <;> cases he
  rfl

theorem applyPlus_valid {op : Token} {l r : Value} {err : RuntimeError}
    (he : applyPlus op l r = .error err) : err.isInvalid = false := by
  unfold applyPlus at he
  split at he <;> cases he
  rfl

theorem applyBinary_valid {op : Token} {left right : Expr} (h : (Expr.binary op left right).WellFormed)
    {l r : Value} {err : RuntimeError} (he : applyBinary op l r = .error err) : err.isInvalid = false := by
  simp only [Expr.WellFormed, List.mem_cons, List.not_mem_nil, or_false] at h
  rcases h with h | h | h | h | h | h | h | h | h | h <;> simp only [applyBinary, h] at he
  · exact applyPlus_valid he
  · exact onNumbers_valid he
  · exact onNumbers_valid he
  · exact onNumbers_valid he
  · exact onNumbers_valid he
  · exact onNumbers_valid he
  · exact onNumbers_valid he
  · exact onNumbers_valid he
  · cases he
  · cases he

theorem Expr.WellFormed.raises {node : Expr} (h : node.WellFormed) {err : RuntimeError}
    (he : node.CanRaise err) : err.isInvalid = false := by
  cases node with
  | var name | assign name =>
    cases he
    rfl
  | unary op =>
    obtain ⟨v, hv⟩ := he
    exact applyUnary_valid h hv
  | binary op =>
    obtain ⟨l, r, hlr⟩ := he
    exact applyBinary_valid h hlr
  | literal | logical | grouping => exact he.elim

theorem parse_wellFormedFrom {T : Token → Prop} {ts : List Token} {program : List Stmt}
    (h : parse ts = .ok program) (hT : ∀ t ∈ ts, T t) :
    Stmt.AllIn (Stmt.WellFormedFrom T) (Expr.WellFormedFrom T) program := by
  obtain ⟨rest, hd⟩ := parse_eq_ok_iff.mp h
  obtain ⟨used, rfl, hderived⟩ := declarations_sound hd
  exact hderived.wellFormed (List.forall_mem_append.mp hT).1

theorem parse_allIn {ts : List Token} {program : List Stmt} (h : parse ts = .ok program) :
    Stmt.AllIn Stmt.WellFormed Expr.WellFormed program := by
  have hall := parse_wellFormedFrom (T := fun _ => True) h fun _ _ => trivial
  exact Stmt.AllIn.combine (fun _ hs _ => hs.1) (fun _ he _ => he.1) hall hall

/-- A program that parsing accepts is well-formed, and no run of it, from whatever machine and however
long, ends at an invalid operator.  Meeting one would end the run, so that none is ever met. -/
theorem parse_wellFormed {ts : List Token} {program : List Stmt} (h : parse ts = .ok program) :
    (∀ s ∈ program, s.All Stmt.WellFormed Expr.WellFormed) ∧
      ∀ steps m err after, Machine.interpret steps program m = some (.error err, after) ∨
        (∃ scope, Machine.executeIn steps scope program m = some (.error err, after)) →
          err.isInvalid = false := by
  have hall := parse_allIn h
  have hnode : ∀ node : Expr, node.WellFormed → ∀ err, node.CanRaise err → err.isInvalid = false :=
    fun node hn err he => hn.raises he
  refine ⟨Stmt.allIn_iff.mp hall, ?_⟩
  intro steps m err after hrun
  rcases hrun with hrun | ⟨scope, hrun⟩
  · exact Machine.interpret_raises hnode rfl steps hall m err after hrun
  · exact (Machine.executeAll_raises hnode rfl steps hall).inScope scope m err after hrun

theorem parse_wellFormed_counting_loop :
    let t : Kind → Token := fun kind => ⟨kind, "?", 0, none⟩
    let i := Expr.var (t .identifier)
    let source := [.kwFor, .leftParen, .kwVar, .identifier, .semicolon, .bang, .identifier, .semicolon,
      .identifier, .equal, .identifier, .minus, .identifier, .rightParen, .kwPrint, .identifier, .semicolon,
      .eof, .minus, .star, .eof].map t
    let program := [.block [.declare (t .identifier) none, .loop (.unary (t .bang) i)
      (.block [.print i, .expression (.assign (t .identifier) (.binary (t .minus) i i))])]]
    parse source = .ok program ∧
      ∀ steps m err after, Machine.interpret steps program m = some (.error err, after) →
        err.isInvalid = false := by
  intro t i source program
  have hparse : parse source = .ok program := by cbv
  exact ⟨hparse, fun steps m err after h => (parse_wellFormed hparse).2 steps m err after (.inl h)⟩

end Lox
