/-!
# The shortest decimal of a binary fraction

A floating point number stands for all reals that are rounded to it. Its shortest decimal
is the point of the coarsest decimal grid that has a point among these reals, and of
several such points the one nearest to the number, an even one if two are equally near.
All of this is decided in natural numbers.
-/

namespace FiniteState.Decimal

/-- The number `digits · 10 ^ exponent`. -/
structure Scientific where
  digits : Nat
  exponent : Int
deriving DecidableEq, Inhabited

/-- A positive number `mantissa · 2 ^ exponent`, with the knowledge whether the next
smaller number is at half the distance of the next larger one. -/
structure Binary where
  mantissa : Nat
  exponent : Int
  tight : Bool
deriving DecidableEq, Inhabited

/-- The numerator of `m · 2 ^ e / 10 ^ k`. -/
def numerator (m : Nat) (e k : Int) : Nat :=
  m * Nat.pow 2 e.toNat * Nat.pow 10 (-k).toNat

/-- The denominator of `m · 2 ^ e / 10 ^ k`. -/
def denominator (e k : Int) : Nat := Nat.pow 2 (-e).toNat * Nat.pow 10 k.toNat

/-- The quotient of two numbers, rounded to the nearest whole number and to the even one
of two nearest. -/
def roundDiv (num den : Nat) : Nat :=
  let q := num / den
  let twice := 2 * (num % den)
  if twice < den then q
  else if den < twice then q + 1
  else if q % 2 = 0 then q else q + 1

/-- The least whole number that is at least `num / den`, or greater if `isOpen` says so. -/
def leastFrom (isOpen : Bool) (num den : Nat) : Nat :=
  if isOpen then num / den + 1 else (num + den - 1) / den

/-- The greatest whole number that is at most `num / den`, or less if `isOpen` says so. -/
def greatestTo (isOpen : Bool) (num den : Nat) : Nat :=
  if isOpen then (num + den - 1) / den - 1 else num / den

/-- The point of the grid of multiples of `10 ^ k` that is rounded to `b` and nearest to
it, if there is one. The bounds of the reals that are rounded to `b` count among them if
the mantissa is even. -/
def onGrid (b : Binary) (k : Int) : Option Nat :=
  let e := b.exponent - 2
  let isOpen := b.mantissa % 2 == 1
  let den := denominator e k
  let low := leastFrom isOpen
    (numerator (4 * b.mantissa - (if b.tight then 1 else 2)) e k) den
  let high := greatestTo isOpen (numerator (4 * b.mantissa + 2) e k) den
  if low ≤ high then
    some (max low (min high (roundDiv (numerator (4 * b.mantissa) e k) den)))
  else none

/-- Tries `n` grids from that of `10 ^ k` on, each ten times finer than the one before. -/
def coarsest (b : Binary) : Nat → Int → Scientific
  | 0, k => ⟨(onGrid b k).getD 0, k⟩
  | n + 1, k =>
      match onGrid b k with
      | some d => ⟨d, k⟩
      | none => coarsest b n (k - 1)

/-- An exponent of a power of ten that is greater than the number. -/
def powerAbove (b : Binary) : Int :=
  (b.exponent + (Nat.log2 b.mantissa : Int) + 1) * 30103 / 100000 + 2

/-- The shortest decimal of a positive number. No number needs more than seventeen digits,
and the search begins less than five grids above the first of them. -/
def shortest (b : Binary) : Scientific := coarsest b 22 (powerAbove b)

end FiniteState.Decimal
