/-!
# Numbers from text

A numeral is read into a whole number that fits a machine word and a power of ten, and
its value is this number scaled by exact powers of ten in floating point. Digits that do
not fit the word only count for the power of ten, or not at all behind the point. The
scaling rounds once for numerals of ordinary length.
-/

namespace FiniteState.Decimal

/-- A number as it is written: its sign, the digits before and behind the point, and the
exponent. -/
structure Numeral where
  negative : Bool
  whole : List Nat
  fraction : List Nat
  exponent : Int
deriving DecidableEq, Inhabited

/-- The greatest number that fits a word. -/
def wordMax : Nat := UInt64.size - 1

/-- Takes digits to the end of a number as long as it fits a word. Gives the number and
how many digits are left over. -/
def takeDigits (n : Nat) : List Nat → Nat × Nat
  | [] => (n, 0)
  | d :: ds =>
      if n * 10 + d ≤ wordMax then takeDigits (n * 10 + d) ds else (n, ds.length + 1)

/-- A power of ten that a floating point number can hold. -/
def tenTo (k : Nat) : Float := Float.ofScientific 1 false k

/-- The greatest power of ten that a floating point number can hold. -/
def greatestPower : Nat := 308

/-- A floating point number divided by `10 ^ k`. -/
def scaleDown (x : Float) (k : Nat) : Float :=
  if k ≤ greatestPower then x / tenTo k
  else if x == 0 then x
  else scaleDown (x / tenTo greatestPower) (k - greatestPower)
termination_by k
decreasing_by
  simp only [greatestPower] at *
  omega

/-- A floating point number times `10 ^ k`, unless that is too large. -/
def scaleUp (x : Float) (k : Nat) : Option Float :=
  if k ≤ greatestPower then
    let y := x * tenTo k
    if y.isInf then none else some y
  else if x == 0 then some x
  else none

namespace Numeral

/-- The whole number and the power of ten that make up the value of a numeral. -/
def parts (n : Numeral) : Nat × Int :=
  let whole := takeDigits 0 n.whole
  let all := takeDigits whole.1 n.fraction
  let behind : Int := n.fraction.length - all.2
  (all.1, whole.2 - behind + n.exponent)

/-- The floating point number that a numeral stands for, if it is not too large. -/
def toFloat? (n : Numeral) : Option Float :=
  let p := n.parts
  let x := p.1.toUInt64.toFloat
  let y :=
    if 0 ≤ p.2 then scaleUp x p.2.toNat else some (scaleDown x p.2.natAbs)
  y.map fun z => if n.negative then -z else z

end Numeral

end FiniteState.Decimal
