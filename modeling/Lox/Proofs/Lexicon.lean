import Mathlib
import Lox.Proofs.Rounding
import Lox.Scan

/-!
The lexical grammar, without a scanner: which texts are lexemes, of what kind and value, and how a source
splits into lexemes, blanks, comments and what is none of these.  Where several lexemes or comments stand
at the front of a source, the longest one counts.
-/

set_option autoImplicit false

namespace Lox.Lexicon

def Digit (c : Char) : Prop := '0' ≤ c ∧ c ≤ '9'

def Letter (c : Char) : Prop := ('A' ≤ c ∧ c ≤ 'Z') ∨ ('a' ≤ c ∧ c ≤ 'z') ∨ c = '_'

def blanks : List Char := [' ', '\t', '\r', '\n']

def operators : List (List Char × Kind) :=
  [(['('], .leftParen), ([')'], .rightParen), (['{'], .leftBrace), (['}'], .rightBrace), ([','], .comma),
    (['.'], .dot), (['-'], .minus), (['+'], .plus), ([';'], .semicolon), (['/'], .slash), (['*'], .star),
    (['!'], .bang), (['!', '='], .bangEqual), (['='], .equal), (['=', '='], .equalEqual),
    (['>'], .greater), (['>', '='], .greaterEqual), (['<'], .less), (['<', '='], .lessEqual)]

def keywords : List (List Char × Kind) :=
  [("and".toList, .kwAnd), ("class".toList, .kwClass), ("else".toList, .kwElse), ("false".toList, .kwFalse),
    ("for".toList, .kwFor), ("fun".toList, .kwFun), ("if".toList, .kwIf), ("nil".toList, .kwNil),
    ("or".toList, .kwOr), ("print".toList, .kwPrint), ("return".toList, .kwReturn),
    ("super".toList, .kwSuper), ("this".toList, .kwThis), ("true".toList, .kwTrue), ("var".toList, .kwVar),
    ("while".toList, .kwWhile)]

/-- The bits of the number are those nearest to the decimal with these digits before and after the
point. -/
def Reads (whole fraction : List Char) (x : Float) : Prop :=
  Number.IsNearest (Nat.ofDigitChars 10 (whole ++ fraction) 0) (10 ^ fraction.length) x.toBits.toNat

inductive Word : List Char → Prop where
  | letters {c : Char} {cs : List Char} : Letter c → (∀ d ∈ cs, Letter d ∨ Digit d) → Word (c :: cs)

/-- The texts that are tokens, with the kind of the token and the value it denotes. -/
inductive Lexeme : List Char → Kind → Option Value → Prop where
  | operator {cs : List Char} {kind : Kind} : (cs, kind) ∈ operators → Lexeme cs kind none
  | string {body : List Char} : (∀ c ∈ body, c ≠ '"') →
      Lexeme ('"' :: body ++ ['"']) .string (some (.string (String.ofList body)))
  | whole {digits : List Char} {x : Float} : digits ≠ [] → (∀ c ∈ digits, Digit c) →
      Reads digits [] x → Lexeme digits .number (some (.number x))
  | fraction {whole fraction : List Char} {x : Float} : whole ≠ [] → (∀ c ∈ whole, Digit c) →
      fraction ≠ [] → (∀ c ∈ fraction, Digit c) → Reads whole fraction x →
      Lexeme (whole ++ '.' :: fraction) .number (some (.number x))
  | keyword {cs : List Char} {kind : Kind} : (cs, kind) ∈ keywords → Lexeme cs kind none
  | identifier {cs : List Char} : Word cs → (∀ kind, (cs, kind) ∉ keywords) → Lexeme cs .identifier none

inductive Comment : List Char → Prop where
  | line {body : List Char} : (∀ c ∈ body, c ≠ '\n') → Comment ('/' :: '/' :: body)

def Lexical (cs : List Char) : Prop := (∃ kind value, Lexeme cs kind value) ∨ Comment cs

/-- Nothing longer at the front of the source is in a lexical class. -/
def Longest (cs rest : List Char) : Prop :=
  ∀ ds, ds <+: cs ++ rest → Lexical ds → ds.length ≤ cs.length

/-- What a source splits into.  A string that no quote closes runs to the end of the source. -/
inductive Splits : List Char → List Segment → Prop where
  | nil : Splits [] []
  | blank {c : Char} {rest : List Char} {segs : List Segment} :
      c ∈ blanks → Splits rest segs → Splits (c :: rest) (.blank c :: segs)
  | token {lexeme rest : List Char} {kind : Kind} {value : Option Value} {segs : List Segment} :
      Lexeme lexeme kind value → Longest lexeme rest → Splits rest segs →
      Splits (lexeme ++ rest) (.token kind lexeme :: segs)
  | comment {body rest : List Char} {segs : List Segment} :
      Comment body → Longest body rest → Splits rest segs → Splits (body ++ rest) (.comment body :: segs)
  | stray {c : Char} {rest : List Char} {segs : List Segment} :
      c ∉ blanks → c ≠ '"' → (∀ ds, ¬Lexical (c :: ds)) → Splits rest segs →
      Splits (c :: rest) (.stray c :: segs)
  | unclosed {body : List Char} : (∀ c ∈ body, c ≠ '"') →
      Splits ('"' :: body) [.unclosed ('"' :: body)]

def complaint? : Segment → Option String
  | .stray _ => some "Unexpected character."
  | .unclosed _ => some "Unterminated string."
  | _ => none

end Lox.Lexicon
