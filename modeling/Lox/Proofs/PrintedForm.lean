import Mathlib
import Lox.Proofs.Form
import Lox.Proofs.ReadBack
import Lox.Proofs.WellFormed

/-!
The printed form identifies the program.  The words of a program that was read are lexemes, so that they
tell the kinds of its nodes apart and hold no blank and no parenthesis.  A literal is printed as the lexeme
of its value, unless it is a string, which may hold anything, or an infinity, which is printed as a name.
-/

set_option autoImplicit false

namespace Lox

open Lexicon

/-- The token is a lexeme, of the kind and the value that follow from it. -/
def Token.Scanned (t : Token) : Prop := Lexeme t.lexeme.toList t.kind t.literal

namespace Form

theorem isPlain_of_inWord {c : Char} (h : Letter c ∨ Digit c) : isPlain c = true := by
  rw [← inWord_iff] at h
  simp only [isPlain, Bool.and_eq_true, decide_eq_true_eq]
  refine ⟨⟨?_, ?_⟩, ?_⟩ <;> exact Segment.ne_of_holds h (by decide)

theorem isPlain_of_word {cs : List Char} (h : Word cs) : ∀ c ∈ cs, isPlain c = true := by
  obtain ⟨hc, hcs⟩ := h
  exact List.forall_mem_cons.mpr ⟨isPlain_of_inWord (.inl hc), fun d hd => isPlain_of_inWord (hcs d hd)⟩

theorem isPlain_of_digits {cs : List Char} (h : ∀ c ∈ cs, Digit c) : ∀ c ∈ cs, isPlain c = true :=
  fun c hc => isPlain_of_inWord (.inr (h c hc))

theorem isPlain_of_operator : ∀ op ∈ operators, op.2 ≠ .leftParen → op.2 ≠ .rightParen →
    ∀ c ∈ op.1, isPlain c = true := by
  simp [operators, isPlain]

theorem isPlain_of_keyword : ∀ kw ∈ keywords, ∀ c ∈ kw.1, isPlain c = true := by
  simp [keywords, isPlain]

/-- Of the lexemes, only strings and parentheses are not plain. -/
theorem isPlain_of_lexeme {cs : List Char} {kind : Kind} {value : Option Value} (h : Lexeme cs kind value)
    (hkind : kind ∉ [.string, .leftParen, .rightParen]) : ∀ c ∈ cs, isPlain c = true := by
  simp only [List.mem_cons, List.not_mem_nil, or_false, not_or] at hkind
  obtain ⟨hstring, hleft, hright⟩ := hkind
  cases h with
  | operator hmem => exact isPlain_of_operator _ hmem hleft hright
  | string _ => exact absurd rfl hstring
  | whole _ hdigits _ => exact isPlain_of_digits hdigits
  | fraction _ hwhole _ hfraction _ =>
    refine List.forall_mem_append.mpr ⟨isPlain_of_digits hwhole, ?_⟩
    exact List.forall_mem_cons.mpr ⟨by decide, isPlain_of_digits hfraction⟩
  | keyword hmem => exact isPlain_of_keyword _ hmem
  | identifier hword _ => exact isPlain_of_word hword

end Form

namespace Token.Scanned

variable {t u : Token}

theorem kind_eq (ht : t.Scanned) (hu : u.Scanned) (h : t.lexeme = u.lexeme) : t.kind = u.kind := by
  rw [Token.Scanned, h] at ht
  exact (Segment.lexeme_unique hu ht).1

theorem renumber_eq (ht : t.Scanned) (hu : u.Scanned) (h : t.lexeme = u.lexeme) :
    t.renumber nowhere = u.renumber nowhere := by
  have hkind := ht.kind_eq hu h
  rw [Token.Scanned, h] at ht
  obtain ⟨_, hliteral⟩ := Segment.lexeme_unique hu ht
  rw [Token.renumber, Token.renumber, hkind, h, hliteral]
  rfl

end Token.Scanned

def Value.token : Value → Token
  | .nil => ⟨.kwNil, "nil", 0, none⟩
  | .boolean true => ⟨.kwTrue, "true", 0, none⟩
  | .boolean false => ⟨.kwFalse, "false", 0, none⟩
  | .number x => ⟨.number, Number.text x, 0, some (.number x)⟩
  | .string s => ⟨.string, s, 0, some (.string s)⟩

namespace Value

/-- Neither a string nor an infinity. -/
def Legible : Value → Prop
  | .string _ => False
  | .number x => x.isInf = false
  | .nil | .boolean _ => True

theorem lexeme_token (v : Value) : v.token.lexeme = v.text := by
  rcases v with _ | (_ | _) | x | s <;> rfl

theorem kind_token_mem {v : Value} (h : v.Legible) :
    v.token.kind ∈ [.kwNil, .kwTrue, .kwFalse, .number] := by
  cases v with
  | boolean b => cases b <;> simp [token]
  | string s => exact h.elim
  | _ => simp [token]

theorem token_injective {v w : Value} (h : v.token.renumber nowhere = w.token.renumber nowhere) : v = w := by
  rcases v with _ | (_ | _) | x | s <;> rcases w with _ | (_ | _) | y | t <;>
    simp_all [token, Token.renumber]

end Value

/-- The word in front of a grouping, as if it were a name. -/
def groupWord : Token := ⟨.identifier, "group", 0, none⟩

def equalSign : Token := ⟨.equal, "=", 0, none⟩

theorem scanned_groupWord : groupWord.Scanned :=
  Segment.lexeme_word (by decide) ['r', 'o', 'u', 'p']

theorem scanned_equalSign : equalSign.Scanned := .operator (by decide)

namespace Expr

def Legible : Expr → Prop
  | .literal value => value.Legible
  | _ => True

def head : Expr → Token
  | .literal value => value.token
  | .var name => name
  | .assign _ _ => equalSign
  | .unary op _ | .binary op _ _ | .logical op _ _ => op
  | .grouping _ => groupWord

def headKinds : Expr → List Kind
  | .literal _ => [.kwNil, .kwTrue, .kwFalse, .number]
  | .var _ | .grouping _ => [.identifier]
  | .assign _ _ => [.equal]
  | .unary _ _ => [.bang, .minus]
  | .binary _ _ _ => [.plus, .minus, .star, .slash, .greater, .greaterEqual, .less, .lessEqual, .equalEqual,
      .bangEqual]
  | .logical _ _ _ => [.kwAnd, .kwOr]

def target? : Expr → Option Token
  | .assign name _ => some name
  | _ => none

/-- The words of the node are lexemes, the one in front of a kind that belongs there. -/
structure Spelled (e : Expr) : Prop where
  scanned : e.head.Scanned
  kind : e.head.kind ∈ e.headKinds
  target : ∀ name ∈ e.target?, name.Scanned ∧ name.kind = .identifier

theorem All.self {P : Expr → Prop} {e : Expr} (h : e.All P) : P e := by
  cases e with
  | literal | var => exact h
  | _ => exact h.1

theorem lexeme_head_eq {e e' : Expr} (h : e.form = e'.form) : e.head.lexeme = e'.head.lexeme := by
  have hhead (e : Expr) : e.head.lexeme = e.form.head := by
    cases e with
    | literal v => exact v.lexeme_token
    | _ => rfl
  rw [hhead, hhead, h]

section Same

variable {e e' : Expr} (h : e.All Spelled) (h' : e'.All Spelled) (hform : e.form = e'.form)

include h h' hform

theorem renumber_head_eq : e.head.renumber nowhere = e'.head.renumber nowhere :=
  h.self.scanned.renumber_eq h'.self.scanned (lexeme_head_eq hform)

theorem headKinds_meet : ∃ kind ∈ e.headKinds, kind ∈ e'.headKinds := by
  refine ⟨e.head.kind, h.self.kind, ?_⟩
  rw [h.self.scanned.kind_eq h'.self.scanned (lexeme_head_eq hform)]
  exact h'.self.kind

/-- The form of an expression determines it but for the lines. -/
theorem renumber_eq_of_form : e.renumber nowhere = e'.renumber nowhere := by
  induction e generalizing e' with
  | literal v =>
    cases e' with
    | literal v' =>
      have hhead : v.token.renumber nowhere = v'.token.renumber nowhere := renumber_head_eq h h' hform
      rw [Value.token_injective hhead]
    | var name => exact absurd (headKinds_meet h h' hform) (by simp [headKinds])
    | _ => simp [form] at hform
  | var name =>
    cases e' with
    | var name' => exact congrArg Expr.var (renumber_head_eq h h' hform)
    | literal v => exact absurd (headKinds_meet h h' hform) (by simp [headKinds])
    | _ => simp [form] at hform
  | assign name value ih =>
    cases e' with
    | assign name' value' =>
      simp only [form, Form.list.injEq, List.cons.injEq, Form.word.injEq, true_and, and_true] at hform
      obtain ⟨hname, hvalue⟩ := hform
      have hscanned := (h.1.target name rfl).1
      have hscanned' := (h'.1.target name' rfl).1
      rw [renumber, renumber, hscanned.renumber_eq hscanned' hname, ih h.2 h'.2 hvalue]
    | binary op l r | logical op l r => exact absurd (headKinds_meet h h' hform) (by simp [headKinds])
    | _ => simp [form] at hform
  | unary op operand ih =>
    cases e' with
    | unary op' operand' =>
      have hop : op.renumber nowhere = op'.renumber nowhere := renumber_head_eq h h' hform
      simp only [form, Form.list.injEq, List.cons.injEq, and_true] at hform
      rw [renumber, renumber, hop, ih h.2 h'.2 hform.2]
    | grouping inner => exact absurd (headKinds_meet h h' hform) (by simp [headKinds])
    | _ => simp [form] at hform
  | binary op l r ihl ihr =>
    cases e' with
    | binary op' l' r' =>
      have hop : op.renumber nowhere = op'.renumber nowhere := renumber_head_eq h h' hform
      simp only [form, Form.list.injEq, List.cons.injEq, and_true] at hform
      rw [renumber, renumber, hop, ihl h.2.1 h'.2.1 hform.2.1, ihr h.2.2 h'.2.2 hform.2.2]
    | assign name value | logical op' l' r' =>
      exact absurd (headKinds_meet h h' hform) (by simp [headKinds])
    | _ => simp [form] at hform
  | logical op l r ihl ihr =>
    cases e' with
    | logical op' l' r' =>
      have hop : op.renumber nowhere = op'.renumber nowhere := renumber_head_eq h h' hform
      simp only [form, Form.list.injEq, List.cons.injEq, and_true] at hform
      rw [renumber, renumber, hop, ihl h.2.1 h'.2.1 hform.2.1, ihr h.2.2 h'.2.2 hform.2.2]
    | assign name value | binary op' l' r' =>
      exact absurd (headKinds_meet h h' hform) (by simp [headKinds])
    | _ => simp [form] at hform
  | grouping inner ih =>
    cases e' with
    | grouping inner' =>
      simp only [form, Form.list.injEq, List.cons.injEq, true_and, and_true] at hform
      rw [renumber, renumber, ih h.2 h'.2 hform]
    | unary op operand => exact absurd (headKinds_meet h h' hform) (by simp [headKinds])
    | _ => simp [form] at hform

end Same

theorem headKinds_plain (e : Expr) : ∀ kind ∈ e.headKinds, kind ∉ [.string, .leftParen, .rightParen] := by
  cases e <;> simp [headKinds]

theorem Spelled.plain_head {e : Expr} (h : e.Spelled) : Form.PlainWord e.head.lexeme :=
  Form.isPlain_of_lexeme h.scanned (e.headKinds_plain _ h.kind)

theorem form_plain {e : Expr} (h : e.All Spelled) : e.form.Plain := by
  induction e with
  | literal v =>
    rw [form, Form.Plain, ← v.lexeme_token]
    exact h.self.plain_head
  | var name => exact h.self.plain_head
  | assign name value ih =>
    obtain ⟨hscanned, hkind⟩ := h.1.target name rfl
    exact ⟨h.1.plain_head, Form.isPlain_of_lexeme hscanned (by simp [hkind]), ih h.2, trivial⟩
  | unary op operand ih | grouping operand ih => exact ⟨h.1.plain_head, ih h.2, trivial⟩
  | binary op l r ihl ihr | logical op l r ihl ihr =>
    exact ⟨h.1.plain_head, ihl h.2.1, ihr h.2.2, trivial⟩

theorem text_renumber (g : Nat → Nat) (e : Expr) : (e.renumber g).text = e.text := by
  induction e <;> simp_all [text, renumber]

end Expr

namespace Stmt

def Spelled : Stmt → Prop
  | .declare name _ => name.Scanned ∧ name.kind = .identifier
  | _ => True

theorem plain_name {name : Token} (h : name.Scanned ∧ name.kind = .identifier) :
    Form.PlainWord name.lexeme :=
  Form.isPlain_of_lexeme h.1 (by simp [h.2])

theorem plain_heads : ∀ w ∈ ["print", ";", "var", "block", "if", "while"], Form.PlainWord w := by
  simp [Form.PlainWord, Form.isPlain]

mutual

theorem form_plain : ∀ {s : Stmt}, s.All Spelled Expr.Spelled → s.form.Plain
  | .print _, h | .expression _, h => ⟨plain_heads _ (by simp), Expr.form_plain h.2, trivial⟩
  | .declare _ (some _), h =>
    ⟨plain_heads _ (by simp), plain_name h.1, Expr.form_plain h.2, trivial⟩
  | .declare _ none, h => ⟨plain_heads _ (by simp), plain_name h, trivial⟩
  | .block _, h => ⟨plain_heads _ (by simp), forms_plain h.2⟩
  | .ifThen _ _, h | .loop _ _, h =>
    ⟨plain_heads _ (by simp), Expr.form_plain h.2.1, form_plain h.2.2, trivial⟩
  | .ifElse _ _ _, h =>
    ⟨plain_heads _ (by simp), Expr.form_plain h.2.1, form_plain h.2.2.1, form_plain h.2.2.2, trivial⟩

theorem forms_plain : ∀ {body : List Stmt}, AllIn Spelled Expr.Spelled body →
    Form.PlainAll (forms body)
  | [], _ => trivial
  | _ :: _, h => ⟨form_plain h.1, forms_plain h.2⟩

end

theorem renumber_initial_eq {initial initial' : Option Expr} (h : ∀ e ∈ initial, e.All Expr.Spelled)
    (h' : ∀ e ∈ initial', e.All Expr.Spelled)
    (hforms : (initial.map Expr.form).toList = (initial'.map Expr.form).toList) :
    initial.map (Expr.renumber nowhere) = initial'.map (Expr.renumber nowhere) := by
  cases initial with
  | none =>
    cases initial' with
    | none => rfl
    | some e' => cases hforms
  | some e =>
    cases initial' with
    | none => cases hforms
    | some e' =>
      exact congrArg some (Expr.renumber_eq_of_form (h e rfl) (h' e' rfl) (List.cons.inj hforms).1)

theorem declare_all {name : Token} {initial : Option Expr}
    (h : (Stmt.declare name initial).All Spelled Expr.Spelled) :
    name.Scanned ∧ name.kind = .identifier ∧ ∀ e ∈ initial, e.All Expr.Spelled := by
  cases initial with
  | none => exact ⟨h.1, h.2, nofun⟩
  | some e => exact ⟨h.1.1, h.1.2, fun _ he => Option.some.inj he ▸ h.2⟩

mutual

theorem renumber_eq_of_form : ∀ {s s' : Stmt}, s.All Spelled Expr.Spelled → s'.All Spelled Expr.Spelled →
    s.form = s'.form → s.renumber nowhere = s'.renumber nowhere
  | .print _, s', h, h', hform => by
    cases s' with
    | print =>
      simp only [form, Form.list.injEq, List.cons.injEq, true_and, and_true] at hform
      rw [renumber, renumber, Expr.renumber_eq_of_form h.2 h'.2 hform]
    | _ => simp [form] at hform
  | .expression _, s', h, h', hform => by
    cases s' with
    | expression =>
      simp only [form, Form.list.injEq, List.cons.injEq, true_and, and_true] at hform
      rw [renumber, renumber, Expr.renumber_eq_of_form h.2 h'.2 hform]
    | _ => simp [form] at hform
  | .declare _ _, s', h, h', hform => by
    cases s' with
    | declare =>
      simp only [form, Form.list.injEq, List.cons.injEq, Form.word.injEq, true_and] at hform
      obtain ⟨hname, _, hinitial⟩ := declare_all h
      obtain ⟨hname', _, hinitial'⟩ := declare_all h'
      rw [renumber, renumber, hname.renumber_eq hname' hform.1,
        renumber_initial_eq hinitial hinitial' hform.2]
    | _ => simp [form] at hform
  | .block _, s', h, h', hform => by
    cases s' with
    | block =>
      simp only [form, Form.list.injEq, true_and] at hform
      rw [renumber, renumber, renumberAll_eq_of_forms h.2 h'.2 hform]
    | _ => simp [form] at hform
  | .ifThen _ _, s', h, h', hform => by
    cases s' with
    | ifThen =>
      simp only [form, Form.list.injEq, List.cons.injEq, true_and, and_true] at hform
      rw [renumber, renumber, Expr.renumber_eq_of_form h.2.1 h'.2.1 hform.1,
        renumber_eq_of_form h.2.2 h'.2.2 hform.2]
    | _ => simp [form] at hform
  | .ifElse _ _ _, s', h, h', hform => by
    cases s' with
    | ifElse =>
      simp only [form, Form.list.injEq, List.cons.injEq, true_and, and_true] at hform
      rw [renumber, renumber, Expr.renumber_eq_of_form h.2.1 h'.2.1 hform.1,
        renumber_eq_of_form h.2.2.1 h'.2.2.1 hform.2.1, renumber_eq_of_form h.2.2.2 h'.2.2.2 hform.2.2]
    | _ => simp [form] at hform
  | .loop _ _, s', h, h', hform => by
    cases s' with
    | loop =>
      simp only [form, Form.list.injEq, List.cons.injEq, true_and, and_true] at hform
      rw [renumber, renumber, Expr.renumber_eq_of_form h.2.1 h'.2.1 hform.1,
        renumber_eq_of_form h.2.2 h'.2.2 hform.2]
    | _ => simp [form] at hform

theorem renumberAll_eq_of_forms : ∀ {body body' : List Stmt}, AllIn Spelled Expr.Spelled body →
    AllIn Spelled Expr.Spelled body' → forms body = forms body' →
    renumberAll nowhere body = renumberAll nowhere body'
  | [], [], _, _, _ => rfl
  | [], _ :: _, _, _, hforms | _ :: _, [], _, _, hforms => by cases hforms
  | s :: rest, s' :: rest', h, h', hforms => by
    obtain ⟨hform, hrest⟩ := List.cons.inj hforms
    rw [renumberAll, renumberAll, renumber_eq_of_form h.1 h'.1 hform,
      renumberAll_eq_of_forms h.2 h'.2 hrest]

end

theorem renumber_eq_of_text {s s' : Stmt} (h : s.All Spelled Expr.Spelled)
    (h' : s'.All Spelled Expr.Spelled) (htext : s.text = s'.text) :
    s.renumber nowhere = s'.renumber nowhere := by
  have htexts : s.form.text ++ [] = s'.form.text ++ [] := by
    rw [← s.toList_text, ← s'.toList_text, htext]
  obtain ⟨hform, _⟩ :=
    Form.text_inj (form_plain h) (form_plain h') Form.stops_nil Form.stops_nil htexts
  exact renumber_eq_of_form h h' hform

mutual

theorem text_renumber (g : Nat → Nat) : ∀ s : Stmt, (s.renumber g).text = s.text
  | .print _ | .expression _ | .declare _ (some _) | .declare _ none => by
    simp [renumber, text, Expr.text_renumber]
  | .block body => by
    simp [renumber, text, textAll_renumber g body]
  | .ifThen _ body | .loop _ body => by
    simp [renumber, text, Expr.text_renumber, body.text_renumber g]
  | .ifElse _ body otherwise => by
    simp [renumber, text, Expr.text_renumber, body.text_renumber g, otherwise.text_renumber g]

theorem textAll_renumber (g : Nat → Nat) : ∀ body : List Stmt,
    textAll (renumberAll g body) = textAll body
  | [] => rfl
  | s :: rest => by
    simp [renumberAll, textAll, s.text_renumber g, textAll_renumber g rest]

end

theorem map_renumber_eq_of_text {p q : List Stmt} (hp : AllIn Spelled Expr.Spelled p)
    (hq : AllIn Spelled Expr.Spelled q) (htext : p.map text = q.map text) :
    p.map (renumber nowhere) = q.map (renumber nowhere) := by
  induction p generalizing q with
  | nil =>
    cases q with
    | nil => rfl
    | cons s' rest' => cases htext
  | cons s rest ih =>
    cases q with
    | nil => cases htext
    | cons s' rest' =>
      obtain ⟨hfirst, hrest⟩ := List.cons.inj htext
      rw [List.map_cons, List.map_cons, renumber_eq_of_text hp.1 hq.1 hfirst, ih hp.2 hq.2 hrest]

end Stmt

theorem scanned_of_mem {source : String} {t : Token} (ht : t ∈ (scan source).tokens) (hkind : t.kind ≠ .eof) :
    t.Scanned := by
  obtain ⟨init, last, htokens, hmap, hliteral⟩ := Scan.exists_tokens_map 1 (segments source.toList)
  rw [scan, htokens, List.mem_append, List.mem_singleton] at ht
  rcases ht with ht | rfl
  · have hmem : (t.kind, t.lexeme.toList) ∈ (segments source.toList).filterMap Segment.token? :=
      hmap ▸ List.mem_map_of_mem ht
    obtain ⟨s, hs, htoken⟩ := List.mem_filterMap.mp hmem
    cases s <;> cases htoken
    obtain ⟨c, cs, rest, htakes⟩ := exists_takes_of_mem hs
    rw [Token.Scanned, hliteral t ht]
    exact htakes.isLexeme
  · exact absurd rfl hkind

/-- A number that a lexeme denotes is printed as a lexeme, if it is finite. -/
theorem scanned_number {cs : List Char} (h : (Number.read cs).isInf = false) :
    (Value.number (Number.read cs)).token.Scanned := by
  rw [Number.read] at h ⊢
  have hle : (Decimal.read cs).magnitude ≤ Number.infinity := Number.nearest_le_infinity _ _
  refine Number.text_ofMagnitude_lexeme (lt_of_le_of_ne hle fun heq => ?_)
  rw [heq, Number.isInf_ofMagnitude_infinity] at h
  cases h

theorem scanned_boolean (b : Bool) : (Value.boolean b).token.Scanned := by
  cases b with
  | true => exact Segment.lexeme_word (by decide) ['r', 'u', 'e']
  | false => exact Segment.lexeme_word (by decide) ['a', 'l', 's', 'e']

theorem scanned_nil : Value.nil.token.Scanned := Segment.lexeme_word (by decide) ['i', 'l']

theorem scanned_literal {t : Token} (ht : t.Scanned) (hkind : t.kind ∈ [.number, .string])
    (hl : (t.literal.getD .nil).Legible) : (t.literal.getD .nil).token.Scanned := by
  have hvalue := Segment.literal?_of_lexeme ht
  simp only [List.mem_cons, List.not_mem_nil, or_false] at hkind
  rcases hkind with hkind | hkind <;> rw [← hvalue, hkind] at hl ⊢
  · exact scanned_number hl
  · exact hl.elim

theorem Expr.spelled_of_legible {e : Expr} (h : e.WellFormedFrom fun t => t.kind ≠ .eof → t.Scanned)
    (hl : e.Legible) : e.Spelled := by
  -- An operator or a name is of a kind that belongs there, which the end of the source does not.
  have hnode {t : Token} {ks : List Kind} (ht : t.kind ≠ .eof → t.Scanned) (hk : t.kind ∈ ks)
      (heof : .eof ∉ ks) : t.Scanned :=
    ht fun h => heof (h ▸ hk)
  have hnone : ∀ name ∈ (none : Option Token), name.Scanned ∧ name.kind = .identifier := by simp
  obtain ⟨hwell, hfrom⟩ := h
  cases e with
  | literal v =>
    refine ⟨?_, v.kind_token_mem hl, hnone⟩
    rcases hfrom with rfl | ⟨b, rfl⟩ | ⟨t, ht, hkind, rfl⟩
    · exact scanned_nil
    · exact scanned_boolean b
    · exact scanned_literal (hnode ht hkind (by decide)) hkind hl
  | var name =>
    have hkind := List.mem_singleton.mpr hwell
    exact ⟨hnode hfrom hkind (by decide), hkind, hnone⟩
  | assign name value =>
    have hname := hnode hfrom (List.mem_singleton.mpr hwell) (by decide)
    exact ⟨scanned_equalSign, List.mem_singleton_self _, fun _ h => Option.some.inj h ▸ ⟨hname, hwell⟩⟩
  | unary | binary | logical => exact ⟨hnode hfrom hwell (by decide), hwell, hnone⟩
  | grouping => exact ⟨scanned_groupWord, List.mem_singleton_self _, hnone⟩

theorem Stmt.spelled_of_wellFormed {s : Stmt} (h : s.WellFormedFrom fun t => t.kind ≠ .eof → t.Scanned) :
    s.Spelled := by
  obtain ⟨hwell, hfrom⟩ := h
  cases s with
  | declare name initial =>
    have hkind : name.kind ≠ .eof := by
      rw [show name.kind = .identifier from hwell]
      decide
    exact ⟨hfrom hkind, hwell⟩
  | _ => trivial

theorem spelled_of_compile {source : String} {program : List Stmt} {s s' : Session}
    (h : Session.compile source s = some (.ok program, s'))
    (hl : ∀ x ∈ program, x.All (fun _ => True) Expr.Legible) :
    Stmt.AllIn Stmt.Spelled Expr.Spelled program := by
  obtain ⟨_, hparse, _⟩ := Session.compile_eq_ok_iff.mp h
  have hread := parse_wellFormedFrom hparse fun t ht hkind => scanned_of_mem ht hkind
  exact Stmt.AllIn.combine (fun _ hs _ => Stmt.spelled_of_wellFormed hs)
    (fun _ he hle => Expr.spelled_of_legible he hle) hread (Stmt.allIn_iff.mpr hl)

/-- Two programs that were read, without a string or an infinity among their literals, are printed alike if
and only if they differ in lines at most. -/
theorem printed_form_identifies {first second : String} {p q : List Stmt} {s s' t t' : Session}
    (hp : Session.compile first s = some (.ok p, s')) (hq : Session.compile second t = some (.ok q, t'))
    (hlp : ∀ x ∈ p, x.All (fun _ => True) Expr.Legible)
    (hlq : ∀ x ∈ q, x.All (fun _ => True) Expr.Legible) :
    p.map Stmt.text = q.map Stmt.text ↔ p.map (Stmt.renumber nowhere) = q.map (Stmt.renumber nowhere) := by
  constructor
  · exact Stmt.map_renumber_eq_of_text (spelled_of_compile hp hlp) (spelled_of_compile hq hlq)
  · intro h
    have htext (program : List Stmt) :
        (program.map (Stmt.renumber nowhere)).map Stmt.text = program.map Stmt.text := by
      rw [List.map_map]
      exact List.map_congr_left fun x _ => x.text_renumber nowhere
    rw [← htext p, h, htext q]

theorem printed_form_identifies_shared_head :
    let program : Nat → Float → List Stmt := fun line x =>
      [.expression (.binary ⟨.minus, "-", line, none⟩ (.literal (.number x))
        (.unary ⟨.minus, "-", line, none⟩ (.var ⟨.identifier, "a", line, none⟩)))]
    let p := program 1 (Number.read "0.5".toList)
    let q := program 2 (Number.read "0.50".toList)
    let s := Session.start {} {}
    Session.compile "0.5 - -a;" s = some (.ok p, s) ∧
      Session.compile "0.50// half\n--a\n;" s = some (.ok q, s) ∧
      p.map Stmt.text = q.map Stmt.text ∧
      p.map (Stmt.renumber nowhere) = q.map (Stmt.renumber nowhere) := by
  intro program p q s
  let tokens : Nat → Nat → String → Float → List Token := fun line stop lexeme x =>
    [⟨.number, lexeme, 1, some (.number x)⟩, ⟨.minus, "-", line, none⟩, ⟨.minus, "-", line, none⟩,
      ⟨.identifier, "a", line, none⟩, ⟨.semicolon, ";", stop, none⟩, .endOfSource stop]
  have hsegments : segments "0.5 - -a;".toList = [.token .number "0.5".toList, .blank ' ',
      .token .minus ['-'], .blank ' ', .token .minus ['-'], .token .identifier ['a'],
      .token .semicolon [';']] := by cbv
  have hsegments' : segments "0.50// half\n--a\n;".toList = [.token .number "0.50".toList,
      .comment "// half".toList, .blank '\n', .token .minus ['-'], .token .minus ['-'],
      .token .identifier ['a'], .blank '\n', .token .semicolon [';']] := by cbv
  have hscan : scan "0.5 - -a;" = ⟨tokens 1 1 "0.5" (Number.read "0.5".toList), []⟩ := by
    rw [scan, hsegments]
    rfl
  have hscan' : scan "0.50// half\n--a\n;" = ⟨tokens 2 3 "0.50" (Number.read "0.50".toList), []⟩ := by
    rw [scan, hsegments']
    rfl
  have hparse (line stop : Nat) (lexeme : String) (x : Float) :
      parse (tokens line stop lexeme x) = .ok (program line x) := by cbv
  have hp : Session.compile "0.5 - -a;" s = some (.ok p, s) := by
    apply Session.compile_of_faultless <;> rw [hscan]
    exact hparse ..
  have hq : Session.compile "0.50// half\n--a\n;" s = some (.ok q, s) := by
    apply Session.compile_of_faultless <;> rw [hscan']
    exact hparse ..
  have hhalf : Number.read "0.50".toList = Number.read "0.5".toList :=
    congrArg Number.ofMagnitude (by decide +kernel)
  have hfinite : (Number.read "0.5".toList).isInf = false := by decide +kernel
  have hlegible (line : Nat) : ∀ x ∈ program line (Number.read "0.5".toList),
      x.All (fun _ => True) Expr.Legible := by
    intro x hx
    rw [List.mem_singleton.mp hx]
    exact ⟨trivial, trivial, hfinite, trivial, trivial⟩
  have htext : p.map Stmt.text = q.map Stmt.text := by
    simp only [q, hhalf]
    rfl
  refine ⟨hp, hq, htext, (printed_form_identifies hp hq (hlegible 1) ?_).mp htext⟩
  simp only [q, hhalf]
  exact hlegible 2

-- A string can spell a name.
example : (Stmt.print (.literal (.string "a"))).text = (Stmt.print (.var ⟨.identifier, "a", 1, none⟩)).text :=
  rfl

end Lox
