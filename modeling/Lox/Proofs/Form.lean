import Mathlib
import Lox.Proofs.Lexemes
import Lox.Stmt

set_option autoImplicit false

namespace Lox

inductive Form where
  | word (w : String)
  | list (head : String) (parts : List Form)

namespace Form

mutual

def text : Form → List Char
  | .word w => w.toList
  | .list head parts => '(' :: head.toList ++ textAll parts ++ [')']

def textAll : List Form → List Char
  | [] => []
  | f :: fs => ' ' :: f.text ++ textAll fs

end

def head : Form → String
  | .word w => w
  | .list head _ => head

def isPlain (c : Char) : Bool := c ≠ ' ' && c ≠ '(' && c ≠ ')'

def PlainWord (w : String) : Prop := ∀ c ∈ w.toList, isPlain c = true

mutual

def Plain : Form → Prop
  | .word w => PlainWord w
  | .list head parts => PlainWord head ∧ PlainAll parts

def PlainAll : List Form → Prop
  | [] => True
  | f :: fs => f.Plain ∧ PlainAll fs

end

/-- A word cannot go on into the rest, nor can a list begin there. -/
def Stops (rest : List Char) : Prop := ∀ c ∈ rest.head?, c = ' ' ∨ c = ')'

theorem stops_nil : Stops [] := nofun

theorem stops_textAll (fs : List Form) (rest : List Char) : Stops (textAll fs ++ ')' :: rest) := by
  cases fs with
  | nil => simp [textAll, Stops]
  | cons f fs => simp [textAll, Stops]

theorem takeWhile_isPlain {w : String} {rest : List Char} (hw : PlainWord w) (hr : Stops rest) :
    (w.toList ++ rest).takeWhile isPlain = w.toList := by
  have hself : w.toList.takeWhile isPlain = w.toList := List.takeWhile_eq_self_iff.mpr hw
  cases rest with
  | nil => rw [List.append_nil, hself]
  | cons c rest =>
    have hc : isPlain c = false := by
      rcases hr c rfl with rfl | rfl <;> rfl
    rw [takeWhile_append_stop hc, hself]

theorem word_inj {w v : String} {r r' : List Char} (hw : PlainWord w) (hv : PlainWord v) (hr : Stops r)
    (hr' : Stops r') (h : w.toList ++ r = v.toList ++ r') : w = v ∧ r = r' := by
  have hwords : w.toList = v.toList := by
    rw [← takeWhile_isPlain hw hr, h, takeWhile_isPlain hv hr']
  rw [hwords] at h
  exact ⟨String.toList_inj.mp hwords, List.append_cancel_left h⟩

theorem word_ne_list {w : String} {r cs : List Char} (hw : PlainWord w) (hr : Stops r) :
    w.toList ++ r ≠ '(' :: cs := by
  intro h
  cases hchars : w.toList with
  | nil =>
    rw [hchars, List.nil_append] at h
    have hparen := hr '(' (by rw [h]; rfl)
    simp at hparen
  | cons c ds =>
    rw [hchars] at h
    have hplain := hw '(' (by rw [hchars, ← (List.cons.inj h).1]; exact List.mem_cons_self)
    cases hplain

mutual

/-- Where one text begins, one form only can be read, and it ends at one place only. -/
theorem text_inj : ∀ {f g : Form} {r r' : List Char}, f.Plain → g.Plain → Stops r → Stops r' →
    f.text ++ r = g.text ++ r' → f = g ∧ r = r'
  | .word w, .word v, r, r', hf, hg, hr, hr', h => by
    obtain ⟨hwords, hrest⟩ := word_inj hf hg hr hr' h
    exact ⟨congrArg Form.word hwords, hrest⟩
  | .word w, .list head parts, r, r', hf, _, hr, _, h => by
    rw [text, text, List.cons_append, List.cons_append, List.cons_append] at h
    exact absurd h (word_ne_list hf hr)
  | .list head parts, .word w, r, r', _, hg, _, hr', h => by
    rw [text, text, List.cons_append, List.cons_append, List.cons_append] at h
    exact absurd h.symm (word_ne_list hg hr')
  | .list head parts, .list head' parts', r, r', hf, hg, _, _, h => by
    simp only [text, List.cons_append, List.append_assoc, List.cons.injEq, true_and, List.nil_append] at h
    obtain ⟨hhead, hrest⟩ := word_inj hf.1 hg.1 (stops_textAll _ _) (stops_textAll _ _) h
    obtain ⟨hparts, hafter⟩ := textAll_inj hf.2 hg.2 hrest
    exact ⟨by rw [hhead, hparts], hafter⟩

theorem textAll_inj : ∀ {fs gs : List Form} {r r' : List Char}, PlainAll fs → PlainAll gs →
    textAll fs ++ ')' :: r = textAll gs ++ ')' :: r' → fs = gs ∧ r = r'
  | [], [], r, r', _, _, h => ⟨rfl, (List.cons.inj h).2⟩
  | [], g :: gs, r, r', _, _, h => by
    simp [textAll] at h
  | f :: fs, [], r, r', _, _, h => by
    simp [textAll] at h
  | f :: fs, g :: gs, r, r', hf, hg, h => by
    simp only [textAll, List.cons_append, List.append_assoc, List.cons.injEq, true_and] at h
    obtain ⟨hfirst, hrest⟩ := text_inj hf.1 hg.1 (stops_textAll _ _) (stops_textAll _ _) h
    obtain ⟨hothers, hafter⟩ := textAll_inj hf.2 hg.2 hrest
    exact ⟨by rw [hfirst, hothers], hafter⟩

end

end Form

def Expr.form : Expr → Form
  | .literal value => .word value.text
  | .var name => .word name.lexeme
  | .assign name value => .list "=" [.word name.lexeme, value.form]
  | .unary op operand => .list op.lexeme [operand.form]
  | .binary op left right => .list op.lexeme [left.form, right.form]
  | .logical op left right => .list op.lexeme [left.form, right.form]
  | .grouping inner => .list "group" [inner.form]

theorem Expr.toList_text (e : Expr) : e.text.toList = e.form.text := by
  induction e <;> simp_all [Expr.text, Expr.form, Form.text, Form.textAll]

mutual

def Stmt.form : Stmt → Form
  | .print value => .list "print" [value.form]
  | .expression value => .list ";" [value.form]
  | .declare name initial => .list "var" (.word name.lexeme :: (initial.map Expr.form).toList)
  | .block body => .list "block" (Stmt.forms body)
  | .ifThen condition body => .list "if" [condition.form, body.form]
  | .ifElse condition body otherwise => .list "if" [condition.form, body.form, otherwise.form]
  | .loop condition body => .list "while" [condition.form, body.form]

def Stmt.forms : List Stmt → List Form
  | [] => []
  | s :: rest => s.form :: Stmt.forms rest

end

mutual

theorem Stmt.toList_text : ∀ s : Stmt, s.text.toList = s.form.text
  | .print _ | .expression _ | .declare _ (some _) | .declare _ none => by
    simp [Stmt.text, Stmt.form, Form.text, Form.textAll, Expr.toList_text]
  | .block body => by
    simp [Stmt.text, Stmt.form, Form.text, Stmt.toList_textAll body]
  | .ifThen _ body | .loop _ body => by
    simp [Stmt.text, Stmt.form, Form.text, Form.textAll, Expr.toList_text, body.toList_text]
  | .ifElse _ body otherwise => by
    simp [Stmt.text, Stmt.form, Form.text, Form.textAll, Expr.toList_text, body.toList_text,
      otherwise.toList_text]

theorem Stmt.toList_textAll : ∀ body : List Stmt,
    (Stmt.textAll body).toList = Form.textAll (Stmt.forms body)
  | [] => rfl
  | s :: rest => by
    simp [Stmt.textAll, Stmt.forms, Form.textAll, s.toList_text, Stmt.toList_textAll rest]

end

end Lox
