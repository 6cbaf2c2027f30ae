import Lox.Number.Decimal

set_option autoImplicit false

namespace Lox.Number

def magnitude (x : Float) : Nat := x.toBits.toNat % Nat.pow 2 63

/-- Also true of a negative zero. -/
def isNegative (x : Float) : Bool := Nat.pow 2 63 ≤ x.toBits.toNat

def ofMagnitude (m : Nat) : Float := Float.ofBits (UInt64.ofNat m)

/-- The number nearest to a decimal spelled as digits with an optional point and digits after it;
infinity when it is too large. -/
def read (lexeme : List Char) : Float := ofMagnitude (Decimal.read lexeme).magnitude

/-- The fewest digits that read back as the same number, never with an exponent. -/
def text (x : Float) : String :=
  if infinity < magnitude x then "NaN"
  else
    let shown := if magnitude x = infinity then "inf"
      else String.ofList (Decimal.shortest (magnitude x)).text
    if isNegative x then "-" ++ shown else shown

end Lox.Number
