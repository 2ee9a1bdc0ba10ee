import FiniteState.Decimal.Double

/-!
# Numbers as text

Numbers are written with the digits of their shortest decimal, in positional form with at
least one digit on each side of the point while the first digit counts for no more than
`10 ^ 15` and no less than `10 ^ -5`, and otherwise with an exponent that has a sign.
-/

namespace FiniteState.Decimal

structure Layout where
  /-- The least power of ten that is written in positional form. -/
  least : Int
  /-- The greatest power of ten that is written in positional form. -/
  greatest : Int
deriving DecidableEq, Inhabited

def documentLayout : Layout := ⟨-5, 15⟩

def digitsOf (n : Nat) : List Char := (toString n).toList

/-- Digits with the point `place` digits after the beginning, and zeros where the digits
do not reach. -/
def positional (digits : List Char) (place : Int) : List Char :=
  if place ≤ 0 then '0' :: '.' :: (List.replicate (-place).toNat '0' ++ digits)
  else
    let whole := digits.take place.toNat ++
      List.replicate (place.toNat - digits.length) '0'
    let fraction := digits.drop place.toNat
    whole ++ '.' :: (if fraction.isEmpty then ['0'] else fraction)

/-- Digits with a point after the first, and the power of ten of the first. -/
def exponential (digits : List Char) (power : Int) : List Char :=
  let mantissa :=
    match digits with
    | [] => []
    | [d] => [d]
    | d :: ds => d :: '.' :: ds
  mantissa ++ 'e' :: (if power < 0 then '-' else '+') :: digitsOf power.natAbs

/-- A decimal in a layout. -/
def Scientific.render (layout : Layout) (s : Scientific) : List Char :=
  let digits := digitsOf s.digits
  let power := s.exponent + digits.length - 1
  if layout.least ≤ power && power ≤ layout.greatest then positional digits (power + 1)
  else exponential digits power

/-- A finite number in a layout. -/
def Double.render (layout : Layout) (d : Double) : List Char :=
  (if d.negative then ['-'] else []) ++
    (if d.isZero then positional ['0'] 1
     else (shortest d.magnitude).render layout)

/-- A floating point number as it stands in documents. Numbers that are not finite have no
text. -/
def render? (x : Float) : Option (List Char) :=
  let d := Double.ofFloat x
  if d.isFinite then some (d.render documentLayout) else none

end FiniteState.Decimal
