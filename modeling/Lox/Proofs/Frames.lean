import Lox.Machine

/-!
A plain semantics of programs.  Its state is a list of maps, innermost first, and the sink that is
printed to.  A block puts an empty map in front and takes it away again; nothing is shared and nothing is
linked.
-/

set_option autoImplicit false

namespace Lox

abbrev Frame := String → Option Value

namespace Frame

def empty : Frame := fun _ => none

def bind (f : Frame) (name : String) (value : Value) : Frame :=
  fun n => if n = name then some value else f n

/-- The value in the nearest map that binds the name. -/
def read (name : String) : List Frame → Option Value
  | [] => none
  | f :: fs => match f name with
    | some value => some value
    | none => read name fs

/-- Changes the nearest map that binds the name, if any does. -/
def overwrite (name : String) (value : Value) : List Frame → Option (List Frame)
  | [] => none
  | f :: fs => match f name with
    | some _ => some (f.bind name value :: fs)
    | none => (overwrite name value fs).map (f :: ·)

end Frame

def Expr.evaluate : Expr → List Frame → Except RuntimeError Value × List Frame
  | .literal value, fs => (.ok value, fs)
  | .grouping inner, fs => inner.evaluate fs
  | .var name, fs => match Frame.read name.lexeme fs with
    | some value => (.ok value, fs)
    | none => (.error (.undefinedVariable name), fs)
  | .assign name e, fs => match e.evaluate fs with
    | (.error err, fs) => (.error err, fs)
    | (.ok value, fs) => match Frame.overwrite name.lexeme value fs with
      | some fs => (.ok value, fs)
      | none => (.error (.undefinedVariable name), fs)
  | .unary op operand, fs => match operand.evaluate fs with
    | (.error err, fs) => (.error err, fs)
    | (.ok value, fs) => (applyUnary op value, fs)
  | .binary op left right, fs => match left.evaluate fs with
    | (.error err, fs) => (.error err, fs)
    | (.ok l, fs) => match right.evaluate fs with
      | (.error err, fs) => (.error err, fs)
      | (.ok r, fs) => (applyBinary op l r, fs)
  | .logical op left right, fs => match left.evaluate fs with
    | (.error err, fs) => (.error err, fs)
    | (.ok l, fs) => match op.kind, l.truthy with
      | .kwOr, true => (.ok l, fs)
      | .kwOr, false => right.evaluate fs
      | _, true => right.evaluate fs
      | _, false => (.ok l, fs)

/-- The expression that a statement evaluates before it does anything else. -/
def Stmt.leading : Stmt → Option Expr
  | .print e | .expression e | .ifThen e _ | .ifElse e _ _ | .loop e _ => some e
  | .declare _ initial => initial
  | .block _ => none

mutual

inductive Runs : Stmt → List Frame × Sink → Except RuntimeError Unit → List Frame × Sink → Prop where
  | failed {s : Stmt} {e : Expr} {fs fs' : List Frame} {out : Sink} {err : RuntimeError} :
      s.leading = some e → e.evaluate fs = (.error err, fs') →
      Runs s (fs, out) (.error err) (fs', out)
  | print {e : Expr} {v : Value} {fs fs' : List Frame} {out out' : Sink} :
      e.evaluate fs = (.ok v, fs') → out.writeLine v.text = (out', true) →
      Runs (.print e) (fs, out) (.ok ()) (fs', out')
  | printFull {e : Expr} {v : Value} {fs fs' : List Frame} {out out' : Sink} :
      e.evaluate fs = (.ok v, fs') → out.writeLine v.text = (out', false) →
      Runs (.print e) (fs, out) (.error (.output Sink.full)) (fs', out')
  | expression {e : Expr} {v : Value} {fs fs' : List Frame} {out : Sink} :
      e.evaluate fs = (.ok v, fs') → Runs (.expression e) (fs, out) (.ok ()) (fs', out)
  | declare {name : Token} {e : Expr} {v : Value} {f : Frame} {fs fs' : List Frame} {out : Sink} :
      e.evaluate fs = (.ok v, f :: fs') →
      Runs (.declare name (some e)) (fs, out) (.ok ()) (f.bind name.lexeme v :: fs', out)
  | declareNil {name : Token} {f : Frame} {fs : List Frame} {out : Sink} :
      Runs (.declare name none) (f :: fs, out) (.ok ()) (f.bind name.lexeme .nil :: fs, out)
  | block {body : List Stmt} {r : Except RuntimeError Unit} {f : Frame} {fs fs' : List Frame}
      {out out' : Sink} :
      RunsAll body (.empty :: fs, out) r (f :: fs', out') → Runs (.block body) (fs, out) r (fs', out')
  | ifThen {c : Expr} {body : Stmt} {v : Value} {r : Except RuntimeError Unit} {fs fs' : List Frame}
      {out : Sink} {after : List Frame × Sink} :
      c.evaluate fs = (.ok v, fs') → v.truthy = true → Runs body (fs', out) r after →
      Runs (.ifThen c body) (fs, out) r after
  | ifSkipped {c : Expr} {body : Stmt} {v : Value} {fs fs' : List Frame} {out : Sink} :
      c.evaluate fs = (.ok v, fs') → v.truthy = false →
      Runs (.ifThen c body) (fs, out) (.ok ()) (fs', out)
  | ifElse {c : Expr} {body otherwise : Stmt} {v : Value} {r : Except RuntimeError Unit}
      {fs fs' : List Frame} {out : Sink} {after : List Frame × Sink} :
      c.evaluate fs = (.ok v, fs') → Runs (if v.truthy then body else otherwise) (fs', out) r after →
      Runs (.ifElse c body otherwise) (fs, out) r after
  | loopDone {c : Expr} {body : Stmt} {v : Value} {fs fs' : List Frame} {out : Sink} :
      c.evaluate fs = (.ok v, fs') → v.truthy = false →
      Runs (.loop c body) (fs, out) (.ok ()) (fs', out)
  | loopBroken {c : Expr} {body : Stmt} {v : Value} {err : RuntimeError} {fs fs' : List Frame}
      {out : Sink} {after : List Frame × Sink} :
      c.evaluate fs = (.ok v, fs') → v.truthy = true → Runs body (fs', out) (.error err) after →
      Runs (.loop c body) (fs, out) (.error err) after
  | loop {c : Expr} {body : Stmt} {v : Value} {r : Except RuntimeError Unit} {fs fs' : List Frame}
      {out : Sink} {turned after : List Frame × Sink} :
      c.evaluate fs = (.ok v, fs') → v.truthy = true → Runs body (fs', out) (.ok ()) turned →
      Runs (.loop c body) turned r after → Runs (.loop c body) (fs, out) r after

inductive RunsAll :
    List Stmt → List Frame × Sink → Except RuntimeError Unit → List Frame × Sink → Prop where
  | nil {before : List Frame × Sink} : RunsAll [] before (.ok ()) before
  | abandoned {s : Stmt} {rest : List Stmt} {err : RuntimeError} {before after : List Frame × Sink} :
      Runs s before (.error err) after → RunsAll (s :: rest) before (.error err) after
  | next {s : Stmt} {rest : List Stmt} {r : Except RuntimeError Unit}
      {before mid after : List Frame × Sink} :
      Runs s before (.ok ()) mid → RunsAll rest mid r after → RunsAll (s :: rest) before r after

end

end Lox
