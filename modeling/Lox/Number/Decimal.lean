import Lox.Number.Magnitude

set_option autoImplicit false

namespace Lox

/-- The number `digits * 10 ^ exponent`. -/
structure Decimal where
  digits : Nat
  exponent : Int
  deriving DecidableEq, Repr

namespace Decimal

def numerator (d : Decimal) : Nat := d.digits * Nat.pow 10 d.exponent.toNat

def denominator (d : Decimal) : Nat := Nat.pow 10 (-d.exponent).toNat

def magnitude (d : Decimal) : Nat := Number.nearest d.numerator d.denominator

/-- Positional notation: digits, and a point only where a digit follows it. -/
def text (d : Decimal) : List Char :=
  let shown := Nat.toDigits 10 d.digits
  let places := (-d.exponent).toNat
  if places = 0 then shown ++ List.replicate d.exponent.toNat '0'
  else
    let padded := List.replicate (places + 1 - shown.length) '0' ++ shown
    let whole := padded.length - places
    padded.take whole ++ '.' :: padded.drop whole

def ofDigits (whole fraction : List Char) : Decimal :=
  ⟨Nat.ofDigitChars 10 (whole ++ fraction) 0, -fraction.length⟩

def read (cs : List Char) : Decimal :=
  ofDigits (cs.takeWhile Char.isDigit) ((cs.dropWhile Char.isDigit).drop 1)

/-- The multiples of `10 ^ exponent` on the two sides of `num / den`, the nearer one first and the
larger one first where both are equally near. -/
def neighbours (num den : Nat) (exponent : Int) : List Decimal :=
  let n := num * Nat.pow 10 (-exponent).toNat
  let d := den * Nat.pow 10 exponent.toNat
  let low : Decimal := ⟨n / d, exponent⟩
  let high : Decimal := ⟨n / d + 1, exponent⟩
  if 2 * (n % d) < d then [low, high] else [high, low]

def exact (magnitude : Nat) : Decimal := ⟨Number.units magnitude * Nat.pow 5 1074, -1074⟩

/-- An exponent whose power of ten is no smaller than the magnitude's value: `30103 / 100000` is just
above the decimal logarithm of two. -/
def ceiling (magnitude : Nat) : Int :=
  (((Number.units magnitude).log2 : Int) - 1073) * 30103 / 100000 + 1

/-- The decimal with the fewest digits that reads back as the given finite magnitude, and of those the
nearest to it.  Ever finer grids are tried from the coarsest that can hit; seventeen digits always
suffice, so that the last resort is never taken. -/
def shortest (magnitude : Nat) : Decimal :=
  if magnitude = 0 then ⟨0, 0⟩
  else
    let hit (finer : Nat) : Option Decimal :=
      (neighbours (Number.units magnitude) (Nat.pow 2 1074) (ceiling magnitude - finer)).find?
        (·.magnitude = magnitude)
    ((List.range 20).findSome? hit).getD (exact magnitude)

end Decimal

end Lox
