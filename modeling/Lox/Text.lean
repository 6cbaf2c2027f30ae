set_option autoImplicit false

namespace Lox.Text

/-- The characters with the property White_Space. -/
def isWhiteSpace (c : Char) : Bool :=
  let n := c.toNat
  (9 ≤ n && n ≤ 13) || n = 0x20 || n = 0x85 || n = 0xA0 || n = 0x1680 || (0x2000 ≤ n && n ≤ 0x200A)
    || n = 0x2028 || n = 0x2029 || n = 0x202F || n = 0x205F || n = 0x3000

def trim (cs : List Char) : List Char :=
  ((cs.dropWhile isWhiteSpace).reverse.dropWhile isWhiteSpace).reverse

def dropReturn (line : List UInt8) : List UInt8 :=
  if line.getLast? = some 13 then line.dropLast else line

/-- Cuts bytes into lines.  A line ends with a line feed, before which a carriage return may stand; the
last one may lack them. -/
def lines : List UInt8 → List (List UInt8)
  | [] => []
  | b :: bs =>
    let line := (b :: bs).takeWhile (· ≠ 10)
    if 10 ∈ b :: bs then dropReturn line :: lines (((b :: bs).dropWhile (· ≠ 10)).drop 1)
    else [line]
termination_by bytes => bytes.length
decreasing_by
  have := (List.dropWhile_sublist (l := b :: bs) (· ≠ 10)).length_le
  simp only [List.length_drop, List.length_cons] at *
  omega

end Lox.Text
