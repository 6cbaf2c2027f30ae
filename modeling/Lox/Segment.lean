import Lox.Token

/-!
A source splits, without loss, into segments: tokens, blanks, comments, stray characters and at most one
string without its closing quote, which then is the last segment.  `Segment.next` takes the longest
segment off the front.
-/

set_option autoImplicit false

namespace Lox

inductive Segment where
  | token (kind : Kind) (lexeme : List Char)
  | blank (c : Char)
  | comment (body : List Char)
  | stray (c : Char)
  | unclosed (body : List Char)
  deriving DecidableEq, Repr

namespace Segment

def chars : Segment → List Char
  | .token _ lexeme => lexeme
  | .blank c => [c]
  | .comment body => body
  | .stray c => [c]
  | .unclosed body => body

def isBlank (c : Char) : Bool := c = ' ' || c = '\t' || c = '\r' || c = '\n'

def startsWord (c : Char) : Bool := c.isAlpha || c = '_'

def inWord (c : Char) : Bool := c.isAlphanum || c = '_'

def sign? : Char → Option Kind
  | '(' => some .leftParen
  | ')' => some .rightParen
  | '{' => some .leftBrace
  | '}' => some .rightBrace
  | ',' => some .comma
  | '.' => some .dot
  | '-' => some .minus
  | '+' => some .plus
  | ';' => some .semicolon
  | '*' => some .star
  | _ => none

/-- The kinds of a character alone and of that character with an equals sign after it. -/
def comparison? : Char → Option (Kind × Kind)
  | '!' => some (.bang, .bangEqual)
  | '=' => some (.equal, .equalEqual)
  | '<' => some (.less, .lessEqual)
  | '>' => some (.greater, .greaterEqual)
  | _ => none

def wordKind (lexeme : List Char) : Kind := (Kind.keyword? (String.ofList lexeme)).getD .identifier

/-- Splits the digits at the front from what follows.  A point belongs to them only if a digit
follows it. -/
def splitNumber (cs : List Char) : List Char × List Char :=
  let whole := cs.takeWhile Char.isDigit
  match cs.dropWhile Char.isDigit with
  | '.' :: d :: more =>
    if d.isDigit then
      (whole ++ '.' :: (d :: more).takeWhile Char.isDigit, (d :: more).dropWhile Char.isDigit)
    else (whole, '.' :: d :: more)
  | rest => (whole, rest)

theorem splitNumber_append (cs : List Char) : (splitNumber cs).1 ++ (splitNumber cs).2 = cs := by
  have h := List.takeWhile_append_dropWhile (p := Char.isDigit) (l := cs)
  simp only [splitNumber]
  split
  · rename_i d more hd
    rw [hd] at h
    split <;> simpa using h
  · exact h

/-- Splits at the first quote, which belongs to neither part. -/
def closeString? (cs : List Char) : Option (List Char × List Char) :=
  match cs.dropWhile (· ≠ '"') with
  | [] => none
  | _ :: rest => some (cs.takeWhile (· ≠ '"'), rest)

theorem closeString?_append {cs body rest : List Char} (h : closeString? cs = some (body, rest)) :
    body ++ '"' :: rest = cs := by
  have hc := List.takeWhile_append_dropWhile (p := (· ≠ '"')) (l := cs)
  unfold closeString? at h
  split at h
  · cases h
  · rename_i quote tail hd
    have hq := List.head?_dropWhile_not (fun c : Char => decide (c ≠ '"')) cs
    rw [hd] at hc hq
    cases h
    have : quote = '"' := by simpa using hq
    exact this ▸ hc

/-- The longest segment at the front of a source that begins with `c`, and the rest. -/
def next (c : Char) (cs : List Char) : Segment × List Char :=
  if isBlank c then (.blank c, cs)
  else if c = '/' then
    if cs.head? = some '/' then
      (.comment (c :: cs.takeWhile (· ≠ '\n')), cs.dropWhile (· ≠ '\n'))
    else (.token .slash [c], cs)
  else if c = '"' then
    match closeString? cs with
    | none => (.unclosed (c :: cs), [])
    | some (body, rest) => (.token .string (c :: body ++ ['"']), rest)
  else if c.isDigit then
    (.token .number (splitNumber (c :: cs)).1, (splitNumber (c :: cs)).2)
  else if startsWord c then
    (.token (wordKind (c :: cs.takeWhile inWord)) (c :: cs.takeWhile inWord), cs.dropWhile inWord)
  else match sign? c, comparison? c with
    | some kind, _ => (.token kind [c], cs)
    | none, some (alone, withEqual) =>
      match cs with
      | '=' :: rest => (.token withEqual [c, '='], rest)
      | _ => (.token alone [c], cs)
    | none, none => (.stray c, cs)

theorem chars_next (c : Char) (cs : List Char) : (next c cs).1.chars ++ (next c cs).2 = c :: cs := by
  unfold next
  repeat' split
  all_goals simp only [chars, splitNumber_append, List.cons_append, List.nil_append,
    List.append_nil, List.append_assoc, List.takeWhile_append_dropWhile]
  rename_i h
  rw [closeString?_append h]

theorem chars_next_ne_nil (c : Char) (cs : List Char) : (next c cs).1.chars ≠ [] := by
  unfold next
  repeat' split
  all_goals simp [chars]
  rename_i h
  unfold splitNumber
  repeat' split
  all_goals simp [List.takeWhile_cons, h]

theorem length_next_lt (c : Char) (cs : List Char) :
    (next c cs).2.length < (c :: cs).length := by
  rw [← chars_next c cs, List.length_append]
  have := List.length_pos_iff.mpr (chars_next_ne_nil c cs)
  omega

end Segment

def segments : List Char → List Segment
  | [] => []
  | c :: cs => (Segment.next c cs).1 :: segments (Segment.next c cs).2
termination_by cs => cs.length
decreasing_by exact Segment.length_next_lt c cs

theorem segments_nil : segments [] = [] := by rw [segments]

theorem segments_cons (c : Char) (cs : List Char) :
    segments (c :: cs) = (Segment.next c cs).1 :: segments (Segment.next c cs).2 := by
  rw [segments]

theorem flatMap_chars_segments (cs : List Char) : (segments cs).flatMap Segment.chars = cs := by
  fun_induction segments cs with
  | case1 => rfl
  | case2 c cs ih => rw [List.flatMap_cons, ih, Segment.chars_next]

end Lox
