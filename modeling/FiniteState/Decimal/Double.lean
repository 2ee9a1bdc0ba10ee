import FiniteState.Decimal.Shortest

/-!
# Double precision numbers

The parts of a floating point number of 64 bits: a sign, an exponent of eleven bits and a
fraction of 52 bits.
-/

namespace FiniteState.Decimal

/-- A floating point number, taken apart. -/
structure Double where
  negative : Bool
  exponent : Nat
  fraction : Nat
deriving DecidableEq, Inhabited

namespace Double

def fractions : Nat := 0x10000000000000

/-- How many exponents there are. The last one is that of infinity and of what is no
number. -/
def exponents : Nat := 0x800

/-- The parts of a number that is given by its bits. -/
def ofBits (bits : Nat) : Double :=
  ⟨bits / (fractions * exponents) == 1, bits / fractions % exponents, bits % fractions⟩

def ofFloat (x : Float) : Double := ofBits x.toBits.toNat

def isFinite (d : Double) : Bool := d.exponent + 1 != exponents

def isZero (d : Double) : Bool := d.exponent == 0 && d.fraction == 0

/-- A finite number without its sign. Numbers with the least exponent have no leading one
in front of the fraction. -/
def magnitude (d : Double) : Binary :=
  if d.exponent = 0 then ⟨d.fraction, -1074, false⟩
  else
    ⟨d.fraction + fractions, (d.exponent : Int) - 1075,
      d.fraction == 0 && d.exponent != 1⟩

end Double

end FiniteState.Decimal
