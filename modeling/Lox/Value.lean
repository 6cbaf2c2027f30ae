import Lox.Number

set_option autoImplicit false

namespace Lox

inductive Value where
  | nil
  | boolean (b : Bool)
  | number (x : Float)
  | string (s : String)
  deriving Repr, Inhabited

namespace Value

/-- Only `nil` and `false` count as false. -/
def truthy : Value → Bool
  | .nil => false
  | .boolean b => b
  | _ => true

def isNumber : Value → Bool
  | .number _ => true
  | _ => false

/-- Equality as a program sees it.  Values of different kinds differ; numbers compare as numbers, so
that a zero equals its negative and what is no number differs from itself. -/
def equals : Value → Value → Bool
  | .nil, .nil => true
  | .boolean a, .boolean b => a == b
  | .number x, .number y => x == y
  | .string s, .string t => s == t
  | _, _ => false

def text : Value → String
  | .nil => "nil"
  | .boolean true => "true"
  | .boolean false => "false"
  | .number x => Number.text x
  | .string s => s

end Value

end Lox
