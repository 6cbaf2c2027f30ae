/-!
Magnitudes of doubles.  The sixty-three bits of a double without its sign form a natural number, and
these numbers are ordered as the values they stand for.  The value of a finite magnitude is a whole
number of units of `2 ^ (-1074)`, so rounding a fraction to a double needs only natural numbers.
-/

set_option autoImplicit false

namespace Lox.Number

/-- The magnitude of the infinities.  All smaller magnitudes are finite, all larger ones are no
numbers. -/
def infinity : Nat := 2047 * Nat.pow 2 52

/-- The value of a finite magnitude in units of `2 ^ (-1074)`.  Below `2 ^ 52` the bits are the value
itself; from there on they are an exponent and the fraction bits under an implicit leading one. -/
def units (magnitude : Nat) : Nat :=
  if magnitude < Nat.pow 2 52 then magnitude
  else (Nat.pow 2 52 + magnitude % Nat.pow 2 52) * Nat.pow 2 (magnitude / Nat.pow 2 52 - 1)

/-- The whole number nearest to `num / den`, a half going to the even neighbour. -/
def roundQuotient (num den : Nat) : Nat :=
  let low := num / den
  let twice := 2 * (num % den)
  if twice < den then low
  else if den < twice then low + 1
  else low + low % 2

/-- The magnitude of the double nearest to `num / den`, a half going to the even neighbour.  With
`shift` the fewest halvings that bring the quotient below `2 ^ 53`, the bits are the rounded quotient
plus `shift` in the exponent's place: a quotient that rounds up to `2 ^ 53` carries into the exponent,
and past the largest finite magnitude lies infinity. -/
def nearest (num den : Nat) : Nat :=
  let scaled := num * Nat.pow 2 1074
  let shift := (scaled / den).log2 - 52
  Nat.min (shift * Nat.pow 2 52 + roundQuotient scaled (den * Nat.pow 2 shift)) infinity

theorem nearest_le_infinity (num den : Nat) : nearest num den ≤ infinity :=
  Nat.min_le_right _ _

end Lox.Number
