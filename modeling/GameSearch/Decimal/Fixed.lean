import GameSearch.Decimal.Binary

/-!
# Decimals of a fixed length

`Decimal.fixed` writes a given number of places, `Decimal.general` at most six digits in the
shorter of the two notations.  Both round the exact value to the nearest decimal, a half going to
the even neighbour.
-/

namespace GameSearch.Decimal

/-- A whole number of units of `10 ^ -places`, with a point. -/
def withPlaces (places n : Nat) : String :=
  let ds := digits n
  let ds := List.replicate (places + 1 - ds.length) '0' ++ ds
  let whole := ds.take (ds.length - places)
  let rest := ds.drop (ds.length - places)
  String.ofList (if rest.isEmpty then whole else whole ++ '.' :: rest)

/-- A number with the given number of places. -/
def fixed (places : Nat) (x : Binary64) : String :=
  match shape x with
  | .nan negative => signText negative ++ "nan"
  | .infinite negative => signText negative ++ "inf"
  | .finite negative mantissa exponent =>
    let (num, den) := quotient mantissa exponent
    signText negative ++ withPlaces places (roundHalfEven (num * Nat.pow 10 places) den)

/-- A positive quotient rounded to six digits, and the place of the first of them. -/
def sixDigits (value : Nat × Nat) : Nat × Int :=
  let place := leadingPlace value
  let (num, den) := shift value (5 - place)
  let n := roundHalfEven num den
  if n = 1000000 then (100000, place + 1) else (n, place)

/-- A number with at most six digits: positional for leading places from -4 to 5, without trailing
zeros, and with an exponent otherwise. -/
def general (x : Binary64) : String :=
  match shape x with
  | .nan negative => signText negative ++ "nan"
  | .infinite negative => signText negative ++ "inf"
  | .finite negative 0 _ => signText negative ++ "0"
  | .finite negative mantissa exponent =>
    let (n, place) := sixDigits (quotient mantissa exponent)
    let ds := (withoutTrailingZeros n).1
    signText negative ++
      if -4 ≤ place ∧ place < 6 then positional ds place else scientific ds place

end GameSearch.Decimal
