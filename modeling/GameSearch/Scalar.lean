import GameSearch.Decimal.Fixed
import GameSearch.Decimal.Shortest

/-!
# Scalars

The numbers that utilities are measured in.  The searches run over floating-point numbers; what is
said about them in exact arithmetic is said over any other instance of `Scalar`.  The larger and
the smaller of two numbers are defined by one comparison each, so that they are determined also for
floating-point numbers that compare with nothing.
-/

namespace GameSearch

/-- Numbers that utilities are measured in. -/
class Scalar (R : Type) extends Add R, Sub R, Mul R, Div R, LT R, LE R, BEq R where
  ofInt : Int → R
  decidableLT : DecidableLT R
  decidableLE : DecidableLE R
  /-- The shortest text that reads back. -/
  text : R → String
  /-- The text with the given number of decimal places. -/
  fixed : Nat → R → String

/-- Scalars with the functions of an exploration bonus. -/
class AnalyticScalar (R : Type) extends Scalar R where
  sqrt : R → R
  log : R → R
  /-- Whether a number is greater than any bound from below, which what is no number is not. -/
  counts : R → Bool

namespace Scalar

variable {R : Type} [Scalar R]

instance : DecidableLT R := decidableLT

instance : DecidableLE R := decidableLE

def ofNat (n : Nat) : R := ofInt n

def zero : R := ofInt 0

def one : R := ofInt 1

/-- The number halfway between 0 and 1. -/
def half : R := (one : R) / ofInt 2

/-- The greater of two numbers, the first if neither is. -/
def larger (a b : R) : R := if a < b then b else a

/-- The lesser of two numbers, the first if neither is. -/
def smaller (a b : R) : R := if b < a then b else a

/-- The number of the unit interval that is nearest to `a`. -/
def clampToUnit (a : R) : R := if a < zero then zero else if one < a then one else a

/-- Whether a number is in the unit interval. -/
def isUnit (a : R) : Bool := decide ((zero : R) ≤ a) && decide (a ≤ (one : R))

end Scalar

instance : AnalyticScalar Binary64 where
  ofInt := Binary64.ofInt
  decidableLT := inferInstance
  decidableLE := inferInstance
  text := Decimal.shortest
  fixed := Decimal.fixed
  sqrt := Binary64.sqrt
  log := Binary64.log
  counts x := decide (-Binary64.infinity < x)

end GameSearch
